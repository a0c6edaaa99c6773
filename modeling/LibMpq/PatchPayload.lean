import LibMpq.PatchApply
import LibMpq.PatchEncode

set_option autoImplicit false

namespace LibMpq

open Effect

namespace Patch

open Wire

def word (value : Nat) : Bytes := le32.encode (UInt32.ofNat value)

def recordOf (completeSize beforeSize afterSize : Nat) (beforeMd5 afterMd5 tag transform : Bytes) : Bytes :=
  patchTag ++ (word completeSize ++ (word beforeSize ++ (word afterSize ++ (md5Tag ++ (word 40 ++
    (beforeMd5 ++ (afterMd5 ++ (transformTag ++ (le32.encode (UInt32.ofNat transform.length + 12) ++
      (tag ++ transform))))))))))

-- `patch_writer_build_payload`
def buildPayload (beforeSize afterSize : Nat) (transform : Bytes) (streamSize : Nat) (useBsd0 : Bool)
    (beforeMd5 afterMd5 : Bytes) : Op (Stop Error) Faults Bytes := do
  stopIf (transform.length > wordMax - 68 ∨ streamSize > wordMax - 68 ∨
    transform.length > addressMax - 28 - 68) .size
  request (.error .malloc)
  let record := recordOf (68 + streamSize) beforeSize afterSize beforeMd5 afterMd5
    (if useBsd0 then bsd0Tag else copyTag) transform
  pure (word 28 ++ (le32.encode 0x80000000 ++ (word (68 + transform.length) ++ (md5Of record ++ record))))

-- One round of the loop over the two layouts.
def tryLayout (before after : Bytes) (best : Option Bytes) (splice : Bool) :
    Op (Stop Error) Faults (Option Bytes) := do
  let bestSize := best.elim (28 + 68 + after.length) List.length
  let built ← bsd0Encode before after splice
  match built with
  | none => pure best
  | some { encoded, streamSize } =>
    if streamSize > wordMax - 68 ∨ encoded.length > wordMax - 68 ∨ encoded.length > addressMax - 28 - 68 then
      pure best
    -- Equal or larger candidates cannot win; only contenders need validation.
    else if 28 + 68 + encoded.length ≥ bestSize then pure best
    else do
      let candidate ← buildPayload before.length after.length encoded streamSize true (md5Of before) (md5Of after)
      let verified ← recover (apply before (candidate.drop 28))
      pure (if verified = some after ∧ candidate.length < bestSize then some candidate else best)

-- Both layouts are tried for a file with content.
def bestLayout (before after : Bytes) : Op (Stop Error) Faults (Option Bytes) :=
  if after.length ≠ 0 then [false, true].foldlM (tryLayout before after) none else pure none

-- `patch_writer_payload`
def writerPayload (before after : Bytes) : Op (Stop Error) Faults Bytes := do
  stopIf (before.length > wordMax ∨ after.length > wordMax - 28 - 68 ∨ after.length > addressMax - 28 - 68) .size
  let best ← bestLayout before after
  match best with
  | some payload => pure payload
  | none => buildPayload before.length after.length after after.length false (md5Of before) (md5Of after)

theorem md5Of_length (data : Bytes) : (md5Of data).length = 16 := (Md5.init.update data).finish.property

structure Fields (record : Bytes) (completeSize beforeSize afterSize : Nat)
    (beforeMd5 afterMd5 tag transform : Bytes) : Prop where
  patchTag : (record.drop 0).take 4 = patchTag
  completeSize : (le32.decode (record.drop 4)).toNat = completeSize
  beforeSize : (le32.decode (record.drop 8)).toNat = beforeSize
  afterSize : (le32.decode (record.drop 12)).toNat = afterSize
  md5Tag : (record.drop 16).take 4 = md5Tag
  md5BlockSize : le32.decode (record.drop 20) = 40
  beforeMd5 : (record.drop 24).take 16 = beforeMd5
  afterMd5 : (record.drop 40).take 16 = afterMd5
  transformTag : (record.drop 56).take 4 = transformTag
  transformSize : (le32.decode (record.drop 60)).toNat = transform.length + 12
  tag : (record.drop 64).take 4 = tag
  body : record.drop 68 = transform
  length : record.length = 68 + transform.length

theorem recordOf_fields {completeSize beforeSize afterSize : Nat} {beforeMd5 afterMd5 tag transform : Bytes}
    (complete : completeSize ≤ wordMax) (old : beforeSize ≤ wordMax) (new : afterSize ≤ wordMax)
    (first : beforeMd5.length = 16) (second : afterMd5.length = 16) (tagged : tag.length = 4)
    (small : transform.length ≤ wordMax - 68) :
    Fields (recordOf completeSize beforeSize afterSize beforeMd5 afterMd5 tag transform) completeSize beforeSize
      afterSize beforeMd5 afterMd5 tag transform := by
  have wordLength : ∀ value, (word value).length = 4 := fun value => le32.encode_length _
  have sized : (le32.encode (UInt32.ofNat transform.length + 12)).length = 4 := le32.encode_length _
  have read : ∀ {value : Nat}, value ≤ wordMax → ∀ rest : Bytes,
      (le32.decode (word value ++ rest)).toNat = value := by
    intro value small rest
    rw [word, decode_encode, toNat_word small]
  have length : ∀ tag ∈ [patchTag, md5Tag, transformTag], tag.length = 4 := by decide
  simp only [List.forall_mem_cons] at length
  obtain ⟨one, two, three, _⟩ := length
  have announced : (UInt32.ofNat transform.length + 12).toNat = transform.length + 12 := by
    have below : transform.length ≤ wordMax := by omega
    unfold wordMax at small
    rw [UInt32.toNat_add, toNat_word below]
    show (transform.length + 12) % 2 ^ 32 = _
    omega
  generalize shape : recordOf completeSize beforeSize afterSize beforeMd5 afterMd5 tag transform = record
  rw [recordOf] at shape
  -- Every field stands behind the ones before it.
  have at4 := congrArg (List.drop 4) shape
  rw [List.drop_left' one] at at4
  have at8 := congrArg (List.drop 4) at4
  rw [List.drop_left' (wordLength _), List.drop_drop] at at8
  have at12 := congrArg (List.drop 4) at8
  rw [List.drop_left' (wordLength _), List.drop_drop] at at12
  have at16 := congrArg (List.drop 4) at12
  rw [List.drop_left' (wordLength _), List.drop_drop] at at16
  have at20 := congrArg (List.drop 4) at16
  rw [List.drop_left' two, List.drop_drop] at at20
  have at24 := congrArg (List.drop 4) at20
  rw [List.drop_left' (wordLength _), List.drop_drop] at at24
  have at40 := congrArg (List.drop 16) at24
  rw [List.drop_left' first, List.drop_drop] at at40
  have at56 := congrArg (List.drop 16) at40
  rw [List.drop_left' second, List.drop_drop] at at56
  have at60 := congrArg (List.drop 4) at56
  rw [List.drop_left' three, List.drop_drop] at at60
  have at64 := congrArg (List.drop 4) at60
  rw [List.drop_left' sized, List.drop_drop] at at64
  have at68 := congrArg (List.drop 4) at64
  rw [List.drop_left' tagged, List.drop_drop] at at68
  constructor
  case patchTag => rw [← shape, List.drop_zero, List.take_left' one]
  case completeSize => rw [← at4, read complete]
  case beforeSize => rw [← at8, read old]
  case afterSize => rw [← at12, read new]
  case md5Tag => rw [← at16, List.take_left' two]
  case md5BlockSize =>
    rw [← at20, word, decode_encode]
    rfl
  case beforeMd5 => rw [← at24, List.take_left' first]
  case afterMd5 => rw [← at40, List.take_left' second]
  case transformTag => rw [← at56, List.take_left' three]
  case transformSize => rw [← at60, decode_encode, announced]
  case tag => rw [← at64, List.take_left' tagged]
  case body => exact at68.symm
  case length =>
    rw [← shape]
    simp only [List.length_append, one, two, three, wordLength, first, second, tagged, sized]
    omega

theorem apply_copy {before after record : Bytes}
    (fields : Fields record (68 + after.length) before.length after.length (md5Of before) (md5Of after)
      copyTag after) : apply before record Faults.healthy = .ok after Faults.healthy := by
  obtain ⟨first, complete, old, new, second, blockSize, oldMd5, newMd5, third, size, tag, body, length⟩ := fields
  have whole : (record.drop 68).take (record.length - 68) = after := by
    rw [body, length, Nat.add_sub_cancel_left, List.take_length]
  have checked : ∀ data, checkMd5 data (md5Of data) Faults.healthy = .ok () Faults.healthy :=
    fun data => stopIf_false (not_not.mpr rfl) _ _
  unfold apply applyInternal
  rw [bind_of_ok (stopIf_false (by omega) _ _), bind_of_ok (load_of (by omega) _),
    bind_of_ok (load_of (by omega) _), bind_of_ok (load_of (by omega) _), first, second, third,
    bind_of_ok (stopIf_false (by simp) _ _), bind_of_ok (wordAt_of (by omega) _),
    bind_of_ok (wordAt_of (by omega) _), bind_of_ok (wordAt_of (by omega) _),
    bind_of_ok (wordAt_of (by omega) _), bind_of_ok (wordAt_of (by omega) _), blockSize, complete, old, new,
    size, bind_of_ok (stopIf_false (by simp; omega) _ _), bind_of_ok (load_of (by omega) _), oldMd5,
    bind_of_ok (checked before), bind_of_ok (load_of (by omega) _), whole,
    bind_of_ok (minus_of (by omega) _), Nat.add_sub_cancel_left, bind_of_ok (load_of (by omega) _), tag]
  have copied : applyTransform before copyTag after after.length after.length false Faults.healthy =
      .ok after Faults.healthy := by
    unfold applyTransform
    rw [if_pos rfl, applyCopy, bind_of_ok (stopIf_false (by simp) _ _), if_neg Bool.false_ne_true,
      bind_of_ok (request_healthy _), load_of (by omega), List.drop_zero, List.take_length]
  rw [bind_of_ok copied, bind_of_ok (load_of (by omega) _), newMd5, bind_of_ok (checked after), pure_run]

theorem apply_refuses {before other record afterMd5 tag transform : Bytes}
    {completeSize afterSize : Nat}
    (fields : Fields record completeSize before.length afterSize (md5Of before) afterMd5 tag transform)
    (another : other.length ≠ before.length ∨ md5Of other ≠ md5Of before) (plan plan' : Faults) (output : Bytes) :
    apply other record plan ≠ .ok output plan' := by
  intro run
  have accepted := (applyInternal_ensures other record false).ok run
  obtain size | digest := another
  · exact size (accepted.baseSize.symm.trans fields.beforeSize)
  · exact digest (accepted.baseMd5.trans fields.beforeMd5)

theorem wordAt_steady (buffer : Bytes) (offset : Nat) : Keeps Faults.Steady (wordAt buffer offset) :=
  (Keeps.load _ _ _).bind fun _ => Keeps.pure _

theorem longAt_steady (buffer : Bytes) (offset : Nat) : Keeps Faults.Steady (longAt buffer offset) :=
  (Keeps.load _ _ _).bind fun _ => Keeps.pure _

theorem byteAt_steady (buffer : Bytes) (offset : Nat) : Keeps Faults.Steady (byteAt buffer offset) :=
  (Keeps.load _ _ _).bind fun _ => Keeps.pure _

theorem expandRle_steady (encoded : Bytes) (decodedSize : Nat) :
    Keeps Faults.Steady (expandRle encoded decodedSize) := by
  refine (Keeps.stopIf _ _).bind fun _ => (Keeps.rounds (fun w => ?_) _ _).bind fun _ =>
    (Keeps.stopIf _ _).bind fun _ => Keeps.pure _
  unfold expandRound
  split
  next =>
    refine (byteAt_steady _ _).bind fun command => (Keeps.minus _ _).bind fun _ =>
      (Keeps.stopIf _ _).bind fun _ => ?_
    split
    next =>
      exact (Keeps.minus _ _).bind fun _ => (Keeps.stopIf _ _).bind fun _ => (Keeps.load _ _ _).bind fun _ =>
        (Keeps.store _ _ _).bind fun _ => Keeps.pure _
    next => exact Keeps.pure _
  next => exact Keeps.pure _

theorem addBytes_steady (base deltas output : Bytes) (source : Int) (delta target add : Nat) :
    Keeps Faults.Steady (addBytes base deltas source delta target add output) := by
  refine Keeps.foldlM (fun output i => ?_) _ _
  refine Keeps.bind ?_ fun _ => (byteAt_steady _ _).bind fun _ => Keeps.store _ _ _
  refine (Keeps.require _).bind fun _ => ?_
  split
  next => exact byteAt_steady _ _
  next => exact Keeps.pure _

theorem applyBsd0_steady (base data : Bytes) (outputSize : Nat) :
    Keeps Faults.Steady (applyBsd0 base data outputSize) := by
  unfold applyBsd0
  refine (Keeps.stopIf _ _).bind fun _ => (Keeps.load _ _ _).bind fun _ => (longAt_steady _ _).bind fun _ =>
    (longAt_steady _ _).bind fun _ => (longAt_steady _ _).bind fun _ => (Keeps.stopIf _ _).bind fun _ =>
    (Keeps.minus _ _).bind fun _ => (Keeps.stopIf _ _).bind fun _ => (Keeps.minus _ _).bind fun _ =>
    (Keeps.stopIf _ _).bind fun _ => (Keeps.minus _ _).bind fun _ => (Keeps.load _ _ _).bind fun _ =>
    (Keeps.load _ _ _).bind fun _ => (Keeps.load _ _ _).bind fun _ => (Keeps.rounds (fun c => ?_) _ _).bind
    fun _ => (Keeps.stopIf _ _).bind fun _ => Keeps.pure _
  unfold applyRound
  split
  next =>
    exact (Keeps.minus _ _).bind fun _ => (Keeps.stopIf _ _).bind fun _ => (wordAt_steady _ _).bind fun _ =>
      (wordAt_steady _ _).bind fun _ => (wordAt_steady _ _).bind fun _ => (Keeps.minus _ _).bind fun _ =>
      (Keeps.minus _ _).bind fun _ => (Keeps.stopIf _ _).bind fun _ =>
      (addBytes_steady _ _ _ _ _ _ _).bind fun _ => (Keeps.plus64 _ _).bind fun _ =>
      (Keeps.minus _ _).bind fun _ => (Keeps.minus _ _).bind fun _ => (Keeps.stopIf _ _).bind fun _ =>
      (Keeps.load _ _ _).bind fun _ => (Keeps.store _ _ _).bind fun _ => (Keeps.stopIf _ _).bind fun _ =>
      (Keeps.plus64 _ _).bind fun _ => (Keeps.stopIf _ _).bind fun _ => Keeps.pure _
  next => exact Keeps.pure _

theorem applyTransform_steady (base method encoded : Bytes) (decodedSize afterSize : Nat) (borrowCopy : Bool) :
    Keeps Faults.Steady (applyTransform base method encoded decodedSize afterSize borrowCopy) := by
  unfold applyTransform
  split
  next =>
    refine (Keeps.stopIf _ _).bind fun _ => ?_
    split
    next => exact Keeps.pure _
    next => exact (request_steady _).bind fun _ => Keeps.load _ _ _
  next =>
    split
    next =>
      refine (Keeps.stopIf _ _).bind fun _ => Keeps.bind ?_ fun _ => (request_steady _).bind fun _ =>
        applyBsd0_steady _ _ _
      unfold decode
      split
      next => exact (request_steady _).bind fun _ => expandRle_steady _ _
      next => exact Keeps.pure _
    next => exact Keeps.throw _

theorem apply_steady (base patch : Bytes) : Keeps Faults.Steady (apply base patch) := by
  unfold apply applyInternal
  exact (Keeps.stopIf _ _).bind fun _ => (Keeps.load _ _ _).bind fun _ => (Keeps.load _ _ _).bind fun _ =>
    (Keeps.load _ _ _).bind fun _ => (Keeps.stopIf _ _).bind fun _ => (wordAt_steady _ _).bind fun _ =>
    (wordAt_steady _ _).bind fun _ => (wordAt_steady _ _).bind fun _ => (wordAt_steady _ _).bind fun _ =>
    (wordAt_steady _ _).bind fun _ => (Keeps.stopIf _ _).bind fun _ => (Keeps.load _ _ _).bind fun _ =>
    (Keeps.stopIf _ _).bind fun _ => (Keeps.load _ _ _).bind fun _ => (Keeps.minus _ _).bind fun _ =>
    (Keeps.load _ _ _).bind fun _ => (applyTransform_steady _ _ _ _ _ _).bind fun _ =>
    (Keeps.load _ _ _).bind fun _ => (Keeps.stopIf _ _).bind fun _ => Keeps.pure _

/-- What a payload for a changed file has to do. -/
structure Reproduces (before after payload : Bytes) : Prop where
  size : payload.length ≤ 28 + 68 + after.length
  info : ∀ plan, ∃ info, infoParse payload plan = .ok info plan ∧ info.dataSize.toNat + 28 = payload.length
  applied : apply before (payload.drop 28) Faults.healthy = .ok after Faults.healthy
  refused : ∀ other : Bytes, other.length ≠ before.length ∨ md5Of other ≠ md5Of before →
    ∀ plan plan' output, apply other (payload.drop 28) plan ≠ .ok output plan'

def payloadOf (record : Bytes) (encodedSize : Nat) : Bytes :=
  word 28 ++ (le32.encode 0x80000000 ++ (word encodedSize ++ (md5Of record ++ record)))

theorem payloadOf_length (record : Bytes) (encodedSize : Nat) :
    (payloadOf record encodedSize).length = 28 + record.length := by
  have wordLength : ∀ value : UInt32, (le32.encode value).length = 4 := fun value => le32.encode_length _
  simp only [payloadOf, word, List.length_append, wordLength, md5Of_length]
  omega

theorem payloadOf_drop (record : Bytes) (encodedSize : Nat) : (payloadOf record encodedSize).drop 28 = record := by
  have wordLength : ∀ value : UInt32, (le32.encode value).length = 4 := fun value => le32.encode_length _
  rw [payloadOf, ← List.append_assoc, ← List.append_assoc, ← List.append_assoc]
  refine List.drop_left' ?_
  simp only [word, List.length_append, wordLength, md5Of_length]

theorem payloadOf_info {record : Bytes} (small : record.length ≤ wordMax) (plan : Faults) :
    ∃ info, infoParse (payloadOf record record.length) plan = .ok info plan ∧
      info.dataSize.toNat + 28 = (payloadOf record record.length).length := by
  have wordLength : ∀ value : UInt32, (le32.encode value).length = 4 := fun value => le32.encode_length _
  have length := payloadOf_length record record.length
  have first : le32.decode ((payloadOf record record.length).drop 0) = 28 := by
    rw [List.drop_zero, payloadOf, word, decode_encode]
    rfl
  have second : le32.decode ((payloadOf record record.length).drop 4) = 0x80000000 := by
    rw [payloadOf, word, List.drop_left' (wordLength _), decode_encode]
  have third : (le32.decode ((payloadOf record record.length).drop 8)).toNat = record.length := by
    rw [payloadOf, word, show (8 : Nat) = 4 + 4 from rfl, ← List.drop_drop, List.drop_left' (wordLength _),
      List.drop_left' (wordLength _), word, decode_encode, toNat_word small]
  unfold infoParse infoParseHeader
  rw [bind_of_ok (stopIf_false (by omega) _ _), bind_of_ok (wordAt_of (by omega) _),
    bind_of_ok (wordAt_of (by omega) _), bind_of_ok (wordAt_of (by omega) _),
    bind_of_ok (load_of (by omega) _), first, second]
  have accepted : ¬ ((28 : UInt32).toNat < 28 ∨ (28 : UInt32).toNat > (payloadOf record record.length).length ∨
      (0x80000000 : UInt32) &&& 0x80000000 = 0) := by
    have size : (28 : UInt32).toNat = 28 := rfl
    have bit : ¬ (0x80000000 : UInt32) &&& 0x80000000 = 0 := by decide
    rw [size]
    simp only [bit, or_false]
    omega
  rw [bind_of_ok (stopIf_false accepted _ _), pure_run]
  exact ⟨_, rfl, by rw [third, length, Nat.add_comm]⟩

theorem buildPayload_of {before after transform : Bytes} {streamSize : Nat} {useBsd0 : Bool}
    (small : transform.length ≤ wordMax - 68) (stream : streamSize ≤ wordMax - 68) :
    Yields (buildPayload before.length after.length transform streamSize useBsd0 (md5Of before) (md5Of after))
      fun payload => payload = payloadOf (recordOf (68 + streamSize) before.length after.length (md5Of before)
        (md5Of after) (if useBsd0 then bsd0Tag else copyTag) transform) (68 + transform.length) := by
  have inside : ¬ (transform.length > wordMax - 68 ∨ streamSize > wordMax - 68 ∨
      transform.length > addressMax - 28 - 68) := by
    unfold wordMax at *
    unfold addressMax
    omega
  unfold buildPayload
  refine ⟨_, ?_, rfl⟩
  rw [bind_of_ok (stopIf_false inside _ _), bind_of_ok (request_healthy _), pure_run]
  rfl

theorem tag_length (useBsd0 : Bool) : (if useBsd0 then bsd0Tag else copyTag).length = 4 := by
  cases useBsd0 <;> decide

theorem payload_reproduces {before after transform : Bytes} {streamSize : Nat} {useBsd0 : Bool}
    (old : before.length ≤ wordMax) (new : after.length ≤ wordMax - 28 - 68)
    (small : transform.length ≤ after.length) (stream : streamSize ≤ wordMax - 68)
    (applied : apply before (recordOf (68 + streamSize) before.length after.length (md5Of before) (md5Of after)
      (if useBsd0 then bsd0Tag else copyTag) transform) Faults.healthy = .ok after Faults.healthy) :
    Reproduces before after (payloadOf (recordOf (68 + streamSize) before.length after.length (md5Of before)
      (md5Of after) (if useBsd0 then bsd0Tag else copyTag) transform) (68 + transform.length)) := by
  have room : (68 : Nat) ≤ wordMax := by decide
  have fields := @recordOf_fields (68 + streamSize) before.length after.length (md5Of before) (md5Of after)
    (if useBsd0 then bsd0Tag else copyTag) transform (by omega) old (by omega) (md5Of_length _) (md5Of_length _)
    (tag_length useBsd0) (by omega)
  generalize recordOf (68 + streamSize) before.length after.length (md5Of before) (md5Of after)
    (if useBsd0 then bsd0Tag else copyTag) transform = record at applied fields ⊢
  have length := fields.length
  rw [← length]
  constructor
  case size =>
    rw [payloadOf_length]
    omega
  case info => exact payloadOf_info (by omega)
  case applied =>
    rw [payloadOf_drop]
    exact applied
  case refused =>
    intro other another plan plan' output
    rw [payloadOf_drop]
    exact apply_refuses fields another plan plan' output

theorem bsd0Encode_yields {before after : Bytes} (old : before.length ≤ wordMax) (new : after.length ≤ wordMax)
    (content : after.length ≠ 0) (splice : Bool) :
    Yields (bsd0Encode before after splice) fun _ => True := by
  unfold bsd0Encode
  refine (Yields.of_serves (bsd0Raw_serves old new content splice)).bind fun built meets => ?_
  cases built with
  | none => exact Yields.pure trivial
  | some raw =>
    have bounded := (meets.2 raw rfl).1
    have packs : Serves (bsd0Pack raw) fun _ => True := by
      refine (Serves.stopIf ?_ _).bind fun _ _ => (Serves.request _).bind fun _ _ =>
        (bsd0Rle_serves raw).mono fun _ _ => trivial
      unfold addressMax
      unfold wordMax at new
      omega
    exact (Yields.of_serves packs).bind fun _ _ => Yields.pure trivial

theorem tryLayout_yields {before after : Bytes} (old : before.length ≤ wordMax)
    (new : after.length ≤ wordMax - 28 - 68) (content : after.length ≠ 0) (best : Option Bytes) (splice : Bool)
    (good : ∀ payload ∈ best, Reproduces before after payload) :
    Yields (tryLayout before after best splice) fun best' =>
      ∀ payload ∈ best', Reproduces before after payload := by
  have bounded : best.elim (28 + 68 + after.length) List.length ≤ 28 + 68 + after.length := by
    cases best with
    | none => exact Nat.le_refl _
    | some payload => exact (good payload rfl).size
  unfold tryLayout
  refine (bsd0Encode_yields old (by omega) content splice).bind fun built _ => ?_
  cases built with
  | none => exact Yields.pure good
  | some transform =>
    obtain ⟨encoded, streamSize⟩ := transform
    simp only
    split
    next => exact Yields.pure good
    next inside =>
      split
      next => exact Yields.pure good
      next contender =>
        simp only [not_or, Nat.not_lt] at inside
        rw [ge_iff_le, Nat.not_le] at contender
        refine (buildPayload_of inside.2.1 inside.1).bind ?_
        intro candidate made
        refine (Yields.recover (applyInternal_ensures _ _ false) (apply_steady before _)).bind
          fun verified ran => Yields.pure ?_
        split
        next kept =>
          rintro payload ⟨⟩
          have run := ran after kept.1
          rw [made, payloadOf_drop] at run
          rw [made]
          exact payload_reproduces old new (by omega) inside.1 run
        next => exact good

theorem writerPayload_reproduces (before after : Bytes) (old : before.length ≤ wordMax)
    (new : after.length ≤ wordMax - 28 - 68) :
    Yields (writerPayload before after) (Reproduces before after) := by
  have inside : ¬ (before.length > wordMax ∨ after.length > wordMax - 28 - 68 ∨
      after.length > addressMax - 28 - 68) := by
    unfold wordMax at *
    unfold addressMax
    omega
  have chosen : Yields (bestLayout before after) fun best => ∀ payload ∈ best, Reproduces before after payload := by
    unfold bestLayout
    split
    next content => exact Yields.foldlM (tryLayout_yields old new content) _ nofun
    next => exact Yields.pure nofun
  unfold writerPayload
  refine (Yields.of_serves (Serves.stopIf inside _)).bind fun _ _ => chosen.bind fun best good => ?_
  cases best with
  | some payload => exact Yields.pure (good payload rfl)
  | none =>
    refine (buildPayload_of (by omega) (by omega)).mono ?_
    rintro payload rfl
    refine payload_reproduces old new (Nat.le_refl _) (by omega) ?_
    exact apply_copy (recordOf_fields (by unfold wordMax at *; omega) old (by omega) (md5Of_length _)
      (md5Of_length _) (tag_length false) (by omega))

theorem writerPayload_reproduces_three : Yields (writerPayload [1, 2] [1, 2, 3]) (Reproduces [1, 2] [1, 2, 3]) :=
  writerPayload_reproduces [1, 2] [1, 2, 3] (by decide) (by decide)

end Patch

end LibMpq
