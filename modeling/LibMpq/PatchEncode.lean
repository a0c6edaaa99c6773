import LibMpq.PatchBsd0

set_option autoImplicit false

namespace LibMpq

open Effect

namespace Patch

open Wire

abbrev wordMax : Nat := 2 ^ 32 - 1

abbrev int32Max : Nat := 2 ^ 31 - 1

abbrev addressMax : Nat := 2 ^ 64 - 1

def putWord (raw : Bytes) (offset value : Nat) : Op (Stop Error) Faults Bytes :=
  store raw offset (le32.encode (UInt32.ofNat value))

def putLong (raw : Bytes) (offset value : Nat) : Op (Stop Error) Faults Bytes :=
  store raw offset (le64.encode (UInt64.ofNat value))

def putHeader (raw : Bytes) (controlSize deltaSize size : Nat) : Op (Stop Error) Faults Bytes := do
  let raw ← store raw 0 bsdiffTag
  let raw ← putLong raw 8 controlSize
  let raw ← putLong raw 16 deltaSize
  putLong raw 24 size

def putLiteral (raw : Bytes) (offset : Nat) (after : Bytes) (start count : Nat) :
    Op (Stop Error) Faults Bytes := do
  let literal ← load after start count
  store raw offset literal

def putDifferences (before after : Bytes) (start offset count : Nat) (raw : Bytes) :
    Op (Stop Error) Faults Bytes :=
  (List.range count).foldlM (fun raw (i : Nat) => do
    let new ← byteAt after (start + i)
    let old ← byteAt before (start + i)
    store raw (offset + i) [new - old]) raw

-- `patch_bsd0_aligned`
def bsd0Aligned (before after : Bytes) : Op (Stop Error) Faults Bytes := do
  let overlap := min before.length after.length
  request (.error .malloc)
  let raw ← putHeader (Bytes.zeros (32 + 12 + after.length)) 12 overlap after.length
  let raw ← putWord raw 32 overlap
  let raw ← putWord raw 36 (after.length - overlap)
  let raw ← putDifferences before after 0 (32 + 12) overlap raw
  if after.length ≠ overlap then
    putLiteral raw (32 + 12 + overlap) after overlap (after.length - overlap)
  else pure raw

-- The first tuple of a splice copies the common prefix and seeks behind it.
def putPrefix (raw after : Bytes) (control extra prefixSize : Nat) : Op (Stop Error) Faults (Bytes × Nat) :=
  if prefixSize ≠ 0 then do
    let raw ← putWord raw (control + 4) prefixSize
    let raw ← putWord raw (control + 8) prefixSize
    let raw ← putLiteral raw extra after 0 prefixSize
    pure (raw, control + 12)
  else pure (raw, control)

-- The second one diffs the overlap, copies what was inserted and skips what was removed.
def putMiddle (raw : Bytes) (control overlap inserted oldMiddle : Nat) :
    Op (Stop Error) Faults (Bytes × Nat) :=
  if overlap + inserted ≠ 0 then do
    let raw ← putWord raw control overlap
    let raw ← putWord raw (control + 4) inserted
    let skipped ← minus oldMiddle overlap
    let raw ← putWord raw (control + 8) skipped
    pure (raw, control + 12)
  else pure (raw, control)

def putInserted (raw after : Bytes) (extra start inserted : Nat) : Op (Stop Error) Faults Bytes :=
  if inserted ≠ 0 then putLiteral raw extra after start inserted else pure raw

-- The last one copies the common suffix.
def putSuffix (raw after : Bytes) (control extra start suffixSize : Nat) : Op (Stop Error) Faults Bytes :=
  if suffixSize ≠ 0 then do
    let raw ← putWord raw (control + 4) suffixSize
    putLiteral raw extra after start suffixSize
  else pure raw

-- `patch_bsd0_splice`
def bsd0Splice (before after : Bytes) (prefixSize suffixSize oldMiddle : Nat) :
    Op (Stop Error) Faults Bytes := do
  let rest ← minus after.length prefixSize
  let newMiddle ← minus rest suffixSize
  let overlap := min oldMiddle newMiddle
  let inserted := newMiddle - overlap
  let controlCount := (if prefixSize ≠ 0 then 1 else 0) + (if overlap + inserted ≠ 0 then 1 else 0) +
    (if suffixSize ≠ 0 then 1 else 0)
  let controlSize := controlCount * 12
  let deltaOffset := 32 + controlSize
  let extraOffset := deltaOffset + overlap
  request (.error .malloc)
  let raw ← putHeader (Bytes.zeros (32 + controlSize + after.length)) controlSize overlap after.length
  let (raw, control) ← putPrefix raw after 32 extraOffset prefixSize
  let (raw, control) ← putMiddle raw control overlap inserted oldMiddle
  let raw ← putDifferences before after prefixSize deltaOffset overlap raw
  let raw ← putInserted raw after (extraOffset + prefixSize) (prefixSize + overlap) inserted
  putSuffix raw after control (extraOffset + prefixSize + inserted) (prefixSize + newMiddle) suffixSize

def countCommon : Bytes → Bytes → Nat
  | a :: as, b :: bs => if a = b then countCommon as bs + 1 else 0
  | _, _ => 0

def prefixOf (before after : Bytes) : Nat := countCommon before after

def suffixOf (before after : Bytes) : Nat :=
  countCommon (before.drop (prefixOf before after)).reverse (after.drop (prefixOf before after)).reverse

/-- The raw stream of a layout, unless the splice is not worth it. -/
def bsd0Raw (before after : Bytes) (splice : Bool) : Op (Stop Error) Faults (Option Bytes) := do
  stopIf (before.length > wordMax ∨ after.length > wordMax ∨
    after.length > addressMax - 32 - 3 * 12 ∨ after.length = 0) .size
  if splice = false then do
    let raw ← bsd0Aligned before after
    pure (some raw)
  else do
    let prefixSize := prefixOf before after
    let suffixSize := suffixOf before after
    if suffixSize < 16 ∨ (prefixSize = 0 ∧ prefixSize + suffixSize = after.length) ∨
        before.length - prefixSize - suffixSize > int32Max then pure none
    else do
      let raw ← bsd0Splice before after prefixSize suffixSize (before.length - prefixSize - suffixSize)
      pure (some raw)

structure Transform where
  encoded : Bytes
  streamSize : Nat

-- `patch_bsd0_pack`
def bsd0Pack (raw : Bytes) : Op (Stop Error) Faults Bytes := do
  stopIf (raw.length > (addressMax - 4) / 2) .size
  request (.error .malloc)
  bsd0Rle raw

-- `libmpq__patch_bsd0_encode`
def bsd0Encode (before after : Bytes) (splice : Bool) : Op (Stop Error) Faults (Option Transform) := do
  let built ← bsd0Raw before after splice
  match built with
  | none => pure none
  | some raw => do
    let encoded ← bsd0Pack raw
    pure (some { encoded, streamSize := raw.length })

theorem word_length (value : Nat) : (le32.encode (UInt32.ofNat value)).length = 4 := le32.encode_length _

theorem word_zero : le32.encode 0 = Bytes.zeros 4 := by decide

theorem long_length (value : Nat) : (le64.encode (UInt64.ofNat value)).length = 8 := le64.encode_length _

def headerOf (controlSize deltaSize size : Nat) : Bytes :=
  bsdiffTag ++ le64.encode (UInt64.ofNat controlSize) ++ le64.encode (UInt64.ofNat deltaSize) ++
    le64.encode (UInt64.ofNat size)

theorem headerOf_length (controlSize deltaSize size : Nat) : (headerOf controlSize deltaSize size).length = 32 := by
  simp only [headerOf, List.length_append, long_length]
  rfl

theorem zeros_add (m n : Nat) : Bytes.zeros (m + n) = Bytes.zeros m ++ Bytes.zeros n :=
  List.replicate_add _ _ _

def streamOf (tuples : List Tuple) (deltas extras : Bytes) : Bytes :=
  headerOf (controlsOf tuples).length deltas.length (deltas.length + extras.length) ++
    (controlsOf tuples ++ (deltas ++ extras))

theorem streamOf_length (tuples : List Tuple) (deltas extras : Bytes) :
    (streamOf tuples deltas extras).length =
      32 + ((controlsOf tuples).length + (deltas.length + extras.length)) := by
  rw [streamOf, List.length_append, List.length_append, List.length_append, headerOf_length]

theorem putHeader_of (controlSize deltaSize size : Nat) (rest : Bytes) (plan : Faults) :
    putHeader (Bytes.zeros 32 ++ rest) controlSize deltaSize size plan =
      .ok (headerOf controlSize deltaSize size ++ rest) plan := by
  have tag : bsdiffTag.length = 8 := rfl
  have first := @store_part Error Faults _ [] (Bytes.zeros 8) (Bytes.zeros 24 ++ rest) bsdiffTag 0 rfl rfl plan
  have second := @store_part Error Faults _ bsdiffTag (Bytes.zeros 8) (Bytes.zeros 16 ++ rest)
    (le64.encode (UInt64.ofNat controlSize)) 8 tag (long_length _) plan
  have third := @store_part Error Faults _ (bsdiffTag ++ le64.encode (UInt64.ofNat controlSize)) (Bytes.zeros 8)
    (Bytes.zeros 8 ++ rest) (le64.encode (UInt64.ofNat deltaSize)) 16
    (by rw [List.length_append, long_length, tag]) (long_length _) plan
  have last := @store_part Error Faults _ (bsdiffTag ++ le64.encode (UInt64.ofNat controlSize) ++
    le64.encode (UInt64.ofNat deltaSize)) (Bytes.zeros 8) rest (le64.encode (UInt64.ofNat size)) 24
    (by rw [List.length_append, List.length_append, long_length, long_length, tag]) (long_length _) plan
  have cut : Bytes.zeros 32 ++ rest = [] ++ Bytes.zeros 8 ++ (Bytes.zeros 24 ++ rest) := by
    rw [show (32 : Nat) = 8 + 24 from rfl, zeros_add, List.nil_append, List.append_assoc]
  have cut' : [] ++ bsdiffTag ++ (Bytes.zeros 24 ++ rest) =
      bsdiffTag ++ Bytes.zeros 8 ++ (Bytes.zeros 16 ++ rest) := by
    rw [show (24 : Nat) = 8 + 16 from rfl, zeros_add, List.nil_append, List.append_assoc, List.append_assoc]
  have cut'' : ∀ front : Bytes, front ++ (Bytes.zeros 16 ++ rest) =
      front ++ Bytes.zeros 8 ++ (Bytes.zeros 8 ++ rest) := by
    intro front
    rw [show (16 : Nat) = 8 + 8 from rfl, zeros_add, List.append_assoc, List.append_assoc]
  rw [putHeader, cut, bind_of_ok first, cut', putLong, bind_of_ok second, cut'', putLong, bind_of_ok third,
    ← List.append_assoc, putLong, last]
  rfl

theorem putWord_of {a b c : Bytes} {offset : Nat} (value : Nat) (place : offset = a.length)
    (same : b.length = 4) (plan : Faults) :
    putWord (a ++ b ++ c) offset value plan = .ok (a ++ le32.encode (UInt32.ofNat value) ++ c) plan :=
  store_part place ((word_length value).trans same.symm) plan

theorem putLiteral_of {a b c after : Bytes} {offset start count : Nat} (place : offset = a.length)
    (held : start + count ≤ after.length) (same : b.length = count) (plan : Faults) :
    putLiteral (a ++ b ++ c) offset after start count plan =
      .ok (a ++ (after.drop start).take count ++ c) plan := by
  rw [putLiteral, bind_of_ok (load_of held plan)]
  refine store_part place ?_ plan
  rw [same, List.length_take, List.length_drop]
  omega

def differences (before after : Bytes) (start count : Nat) : Bytes :=
  List.zipWith (fun new old => new - old) ((after.drop start).take count) ((before.drop start).take count)

theorem differences_length {before after : Bytes} {start count : Nat} (held : start + count ≤ before.length)
    (held' : start + count ≤ after.length) : (differences before after start count).length = count := by
  simp only [differences, List.length_zipWith, List.length_take, List.length_drop]
  omega

theorem differences_succ {before after : Bytes} {start count : Nat} (held : start + count < before.length)
    (held' : start + count < after.length) :
    differences before after start (count + 1) =
      differences before after start count ++ [after.getD (start + count) 0 - before.getD (start + count) 0] := by
  have part : ∀ data : Bytes, start + count < data.length →
      (data.drop start).take (count + 1) = (data.drop start).take count ++ [data.getD (start + count) 0] := by
    intro data inside
    rw [take_getD (by rw [List.length_drop]; omega), List.getD_eq_getElem?_getD, List.getElem?_drop,
      ← List.getD_eq_getElem?_getD]
  rw [differences, part before held, part after held', List.zipWith_append
    (by simp only [List.length_take, List.length_drop]; omega)]
  rfl

theorem putDifferences_of {before after a b c : Bytes} {start offset count : Nat}
    (held : start + count ≤ before.length) (held' : start + count ≤ after.length) (place : offset = a.length)
    (same : b.length = count) (plan : Faults) :
    putDifferences before after start offset count (a ++ b ++ c) plan =
      .ok (a ++ differences before after start count ++ c) plan := by
  have part : ∀ done ≤ count, putDifferences before after start offset done (a ++ b ++ c) plan =
      .ok (a ++ (differences before after start done ++ b.drop done) ++ c) plan := by
    unfold putDifferences
    intro done
    induction done with
    | zero =>
      intro _
      rw [List.range_zero, List.foldlM_nil, pure_run]
      simp [differences]
    | succ done ih =>
      intro within
      have length := @differences_length before after start done (by omega) (by omega)
      refine foldlM_range_succ (ih (by omega)) ?_
      rw [bind_of_ok (byteAt_of (by omega) _), bind_of_ok (byteAt_of (by omega) _),
        differences_succ (by omega) (by omega)]
      have cut : a ++ (differences before after start done ++ b.drop done) ++ c =
          (a ++ differences before after start done) ++ (b.drop done).take 1 ++ (b.drop (done + 1) ++ c) := by
        have rest : b.drop done = (b.drop done).take 1 ++ b.drop (done + 1) := by
          rw [← List.drop_drop, List.take_append_drop]
        simp only [List.append_assoc]
        rw [← List.append_assoc ((b.drop done).take 1), ← rest]
      rw [cut, store_part (by rw [List.length_append, length]; omega)
        (by rw [List.length_take, List.length_drop, List.length_singleton]; omega)]
      simp only [List.append_assoc]
  have whole := part count (Nat.le_refl _)
  rwa [← same, List.drop_length, List.append_nil, same] at whole

def alignedTuple (overlap size : Nat) : Tuple where
  add := UInt32.ofNat overlap
  copy := UInt32.ofNat (size - overlap)
  rawMove := 0

theorem bsd0Aligned_serves (before after : Bytes) :
    Serves (bsd0Aligned before after) fun raw =>
      raw = streamOf [alignedTuple (min before.length after.length) after.length]
        (differences before after 0 (min before.length after.length))
        (after.drop (min before.length after.length)) := by
  unfold bsd0Aligned
  have within : min before.length after.length ≤ after.length := Nat.min_le_right _ _
  have within' : min before.length after.length ≤ before.length := Nat.min_le_left _ _
  simp only
  generalize min before.length after.length = overlap at within within'
  refine (Serves.request _).bind fun _ _ => Serves.of_ok (fun plan => ?_) rfl
  have cut : Bytes.zeros (32 + 12 + after.length) = Bytes.zeros 32 ++ (Bytes.zeros 4 ++ (Bytes.zeros 4 ++
      (Bytes.zeros 4 ++ (Bytes.zeros overlap ++ Bytes.zeros (after.length - overlap))))) := by
    simp only [← zeros_add]
    congr 1
    omega
  have differ := @differences_length before after 0 overlap (by omega) (by omega)
  have whole : overlap + (after.drop overlap).length = after.length := by
    rw [List.length_drop]
    omega
  rw [streamOf, controlsOf_length, List.length_singleton, differ, whole]
  have header := headerOf_length 12 overlap after.length
  rw [cut, bind_of_ok (putHeader_of 12 overlap after.length _ plan)]
  rw [Nat.mul_one]
  generalize headerOf 12 overlap after.length = front at header
  -- The words and the two streams are written one behind the other.
  have first := @putWord_of front (Bytes.zeros 4) (Bytes.zeros 4 ++ (Bytes.zeros 4 ++ (Bytes.zeros overlap ++
    Bytes.zeros (after.length - overlap)))) 32 overlap header.symm rfl plan
  have second := @putWord_of (front ++ le32.encode (UInt32.ofNat overlap)) (Bytes.zeros 4) (Bytes.zeros 4 ++
    (Bytes.zeros overlap ++ Bytes.zeros (after.length - overlap))) 36 (after.length - overlap)
    (by rw [List.length_append, word_length, header]) rfl plan
  have third := @putDifferences_of before after (front ++ le32.encode (UInt32.ofNat overlap) ++
    le32.encode (UInt32.ofNat (after.length - overlap)) ++ Bytes.zeros 4) (Bytes.zeros overlap)
    (Bytes.zeros (after.length - overlap)) 0 (32 + 12) overlap (by omega) (by omega)
    (by simp only [List.length_append, word_length, header, Bytes.zeros_length]) (Bytes.zeros_length _) plan
  simp only [List.append_assoc] at first second third
  rw [bind_of_ok first, bind_of_ok second, bind_of_ok third]
  have code : controlsOf [alignedTuple overlap after.length] = le32.encode (UInt32.ofNat overlap) ++
      (le32.encode (UInt32.ofNat (after.length - overlap)) ++ Bytes.zeros 4) := by
    rw [controlsOf, List.flatMap_singleton, Tuple.code, List.append_assoc, alignedTuple, word_zero]
  rw [code]
  by_cases longer : after.length ≠ overlap
  · rw [if_pos longer]
    have last := @putLiteral_of (front ++ le32.encode (UInt32.ofNat overlap) ++
      le32.encode (UInt32.ofNat (after.length - overlap)) ++ Bytes.zeros 4 ++ differences before after 0 overlap)
      (Bytes.zeros (after.length - overlap)) [] after (32 + 12 + overlap) overlap (after.length - overlap)
      (by simp only [List.length_append, word_length, header, Bytes.zeros_length, differ]) (by omega)
      (Bytes.zeros_length _) plan
    have rest : (after.drop overlap).take (after.length - overlap) = after.drop overlap := by
      rw [← List.length_drop, List.take_length]
    simp only [List.append_assoc, List.append_nil, rest] at last
    rw [last]
    simp only [List.append_assoc]
  · rw [not_not] at longer
    rw [if_neg (not_not.mpr longer), pure_run, ← longer, Nat.sub_self, List.drop_length]
    simp only [List.append_assoc]
    rfl

def tupleOf (add copy move : Nat) : List Tuple :=
  if add + copy ≠ 0 then
    [{ add := UInt32.ofNat add, copy := UInt32.ofNat copy, rawMove := UInt32.ofNat move }]
  else []

theorem tupleOf_none {add copy : Nat} (none : add + copy = 0) (move : Nat) : tupleOf add copy move = [] :=
  if_neg (not_not.mpr none)

theorem tupleOf_length (add copy move : Nat) :
    (tupleOf add copy move).length = if add + copy ≠ 0 then 1 else 0 := by
  unfold tupleOf
  split <;> rfl

theorem tupleOf_code {add copy : Nat} (some : add + copy ≠ 0) (move : Nat) :
    controlsOf (tupleOf add copy move) = le32.encode (UInt32.ofNat add) ++
      (le32.encode (UInt32.ofNat copy) ++ le32.encode (UInt32.ofNat move)) := by
  rw [tupleOf, if_pos some, controlsOf, List.flatMap_singleton, Tuple.code, List.append_assoc]

theorem tupleOf_slot {add copy : Nat} (some : add + copy ≠ 0) (move : Nat) :
    (controlsOf (tupleOf add copy move)).length = 12 := by
  rw [controlsOf_length, tupleOf_length, if_pos some]

theorem slot : Bytes.zeros 12 = Bytes.zeros 4 ++ Bytes.zeros 4 ++ Bytes.zeros 4 := rfl

theorem putPrefix_of {front streams rest after : Bytes} {control extra size : Nat}
    (place : control = front.length)
    (placed : extra = control + (controlsOf (tupleOf 0 size size)).length + streams.length)
    (held : size ≤ after.length) (plan : Faults) :
    putPrefix (front ++ Bytes.zeros (controlsOf (tupleOf 0 size size)).length ++ streams ++
        Bytes.zeros size ++ rest) after control extra size plan =
      .ok (front ++ controlsOf (tupleOf 0 size size) ++ streams ++ after.take size ++ rest,
        control + (controlsOf (tupleOf 0 size size)).length) plan := by
  unfold putPrefix
  by_cases some : size ≠ 0
  · have ranged : 0 + size ≠ 0 := by omega
    have length := tupleOf_slot ranged size
    have code : controlsOf (tupleOf 0 size size) = Bytes.zeros 4 ++ (le32.encode (UInt32.ofNat size) ++
        le32.encode (UInt32.ofNat size)) := tupleOf_code ranged size
    rw [length] at placed ⊢
    rw [if_pos some, code, slot]
    have first := @putWord_of (front ++ Bytes.zeros 4) (Bytes.zeros 4) (Bytes.zeros 4 ++ (streams ++
      (Bytes.zeros size ++ rest))) (control + 4) size (by simp only [place, List.length_append, Bytes.zeros_length]) rfl plan
    have second := @putWord_of (front ++ Bytes.zeros 4 ++ le32.encode (UInt32.ofNat size)) (Bytes.zeros 4)
      (streams ++ (Bytes.zeros size ++ rest)) (control + 8) size
      (by simp only [place, List.length_append, word_length, Bytes.zeros_length]) rfl plan
    have third := @putLiteral_of (front ++ Bytes.zeros 4 ++ le32.encode (UInt32.ofNat size) ++
      le32.encode (UInt32.ofNat size) ++ streams) (Bytes.zeros size) rest after extra 0 size
      (by simp only [List.length_append, word_length, Bytes.zeros_length]; omega) (by omega)
      (Bytes.zeros_length _) plan
    simp only [List.append_assoc, List.drop_zero] at first second third ⊢
    rw [bind_of_ok first, bind_of_ok second, bind_of_ok third, pure_run]
  · rw [not_not] at some
    subst some
    rfl

theorem putMiddle_of {front rest : Bytes} {control overlap inserted oldMiddle : Nat}
    (place : control = front.length) (within : overlap ≤ oldMiddle) (plan : Faults) :
    putMiddle (front ++ Bytes.zeros (controlsOf (tupleOf overlap inserted (oldMiddle - overlap))).length ++
        rest) control overlap inserted oldMiddle plan =
      .ok (front ++ controlsOf (tupleOf overlap inserted (oldMiddle - overlap)) ++ rest,
        control + (controlsOf (tupleOf overlap inserted (oldMiddle - overlap))).length) plan := by
  unfold putMiddle
  by_cases some : overlap + inserted ≠ 0
  · rw [tupleOf_slot some, if_pos some, tupleOf_code some, slot]
    have first := @putWord_of front (Bytes.zeros 4) (Bytes.zeros 4 ++ (Bytes.zeros 4 ++ rest)) control overlap
      place rfl plan
    have second := @putWord_of (front ++ le32.encode (UInt32.ofNat overlap)) (Bytes.zeros 4)
      (Bytes.zeros 4 ++ rest) (control + 4) inserted (by simp only [place, List.length_append, word_length]) rfl plan
    have third := @putWord_of (front ++ le32.encode (UInt32.ofNat overlap) ++ le32.encode (UInt32.ofNat inserted))
      (Bytes.zeros 4) rest (control + 8) (oldMiddle - overlap)
      (by simp only [place, List.length_append, word_length]) rfl plan
    simp only [List.append_assoc] at first second third ⊢
    rw [bind_of_ok first, bind_of_ok second, bind_of_ok (minus_of within _), bind_of_ok third, pure_run]
  · rw [not_not] at some
    rw [if_neg (not_not.mpr some), tupleOf_none some]
    rfl

theorem putSuffix_of {front streams after : Bytes} {control extra start size : Nat}
    (place : control = front.length)
    (placed : extra = control + (controlsOf (tupleOf 0 size 0)).length + streams.length)
    (held : start + size ≤ after.length) (plan : Faults) :
    putSuffix (front ++ Bytes.zeros (controlsOf (tupleOf 0 size 0)).length ++ streams ++ Bytes.zeros size)
        after control extra start size plan =
      .ok (front ++ controlsOf (tupleOf 0 size 0) ++ streams ++ (after.drop start).take size) plan := by
  unfold putSuffix
  by_cases some : size ≠ 0
  · have ranged : 0 + size ≠ 0 := by omega
    have length := tupleOf_slot ranged 0
    have code : controlsOf (tupleOf 0 size 0) = Bytes.zeros 4 ++ (le32.encode (UInt32.ofNat size) ++
        Bytes.zeros 4) := tupleOf_code ranged 0
    rw [length] at placed ⊢
    rw [if_pos some, code, slot]
    have first := @putWord_of (front ++ Bytes.zeros 4) (Bytes.zeros 4) (Bytes.zeros 4 ++ (streams ++
      Bytes.zeros size)) (control + 4) size (by simp only [place, List.length_append, Bytes.zeros_length]) rfl plan
    have second := @putLiteral_of (front ++ Bytes.zeros 4 ++ le32.encode (UInt32.ofNat size) ++
      Bytes.zeros 4 ++ streams) (Bytes.zeros size) [] after extra start size
      (by simp only [List.length_append, word_length, Bytes.zeros_length]; omega) held
      (Bytes.zeros_length _) plan
    simp only [List.append_assoc, List.append_nil] at first second ⊢
    rw [bind_of_ok first, second]
  · rw [not_not] at some
    subst some
    simp [tupleOf, controlsOf, Bytes.zeros]

theorem putInserted_of {a c after : Bytes} {extra start count : Nat} (place : extra = a.length)
    (held : start + count ≤ after.length) (plan : Faults) :
    putInserted (a ++ Bytes.zeros count ++ c) after extra start count plan =
      .ok (a ++ (after.drop start).take count ++ c) plan := by
  unfold putInserted
  by_cases some : count ≠ 0
  · rw [if_pos some, putLiteral_of place held (Bytes.zeros_length _)]
  · rw [not_not] at some
    subst some
    rfl

def spliceTuples (prefixSize overlap inserted skipped suffixSize : Nat) : List Tuple :=
  tupleOf 0 prefixSize prefixSize ++ (tupleOf overlap inserted skipped ++ tupleOf 0 suffixSize 0)

theorem spliceTuples_length (prefixSize overlap inserted skipped suffixSize : Nat) :
    (spliceTuples prefixSize overlap inserted skipped suffixSize).length ≤ 3 := by
  rw [spliceTuples, List.length_append, List.length_append, tupleOf_length, tupleOf_length, tupleOf_length]
  split <;> split <;> split <;> omega

theorem bsd0Splice_serves {before after : Bytes} {prefixSize suffixSize oldMiddle newMiddle overlap : Nat}
    (old : prefixSize + oldMiddle + suffixSize = before.length)
    (new : prefixSize + newMiddle + suffixSize = after.length) (shared : overlap = min oldMiddle newMiddle) :
    Serves (bsd0Splice before after prefixSize suffixSize oldMiddle) fun raw =>
      raw = streamOf (spliceTuples prefixSize overlap (newMiddle - overlap) (oldMiddle - overlap) suffixSize)
        (differences before after prefixSize overlap)
        (after.take prefixSize ++ after.drop (prefixSize + overlap)) := by
  have within : overlap ≤ newMiddle := shared ▸ Nat.min_le_right _ _
  have within' : overlap ≤ oldMiddle := shared ▸ Nat.min_le_left _ _
  unfold bsd0Splice
  refine (Serves.of_ok (minus_of (by omega)) rfl : Serves _ fun rest => rest = after.length - prefixSize).bind ?_
  rintro _ rfl
  refine (Serves.of_ok (minus_of (by omega)) rfl :
    Serves _ fun middle => middle = after.length - prefixSize - suffixSize).bind ?_
  rintro _ rfl
  have middle : after.length - prefixSize - suffixSize = newMiddle := by omega
  rw [middle]
  simp only [← shared]
  obtain ⟨inserted, rfl⟩ := Nat.exists_eq_add_of_le within
  rw [Nat.add_sub_cancel_left]
  refine (Serves.request _).bind fun _ _ => Serves.of_ok (fun plan => ?_) rfl
  have counted : ((if prefixSize ≠ 0 then 1 else 0) + (if overlap + inserted ≠ 0 then 1 else 0) +
      (if suffixSize ≠ 0 then 1 else 0)) * 12 =
      (controlsOf (spliceTuples prefixSize overlap inserted (oldMiddle - overlap) suffixSize)).length := by
    rw [controlsOf_length, spliceTuples, List.length_append, List.length_append, tupleOf_length,
      tupleOf_length, tupleOf_length, Nat.zero_add, Nat.zero_add]
    omega
  have split : (controlsOf (spliceTuples prefixSize overlap inserted (oldMiddle - overlap) suffixSize)).length =
      (controlsOf (tupleOf 0 prefixSize prefixSize)).length +
        ((controlsOf (tupleOf overlap inserted (oldMiddle - overlap))).length +
          (controlsOf (tupleOf 0 suffixSize 0)).length) := by
    rw [spliceTuples, controlsOf_append, controlsOf_append, List.length_append, List.length_append]
  have differ := @differences_length before after prefixSize overlap (by omega) (by omega)
  have extras : (after.take prefixSize ++ after.drop (prefixSize + overlap)).length =
      prefixSize + inserted + suffixSize := by
    simp only [List.length_append, List.length_take, List.length_drop]
    omega
  have total : after.length = overlap + (prefixSize + inserted + suffixSize) := by omega
  rw [counted, streamOf, differ, extras, total]
  have cut : Bytes.zeros (32 + (controlsOf (spliceTuples prefixSize overlap inserted (oldMiddle - overlap)
      suffixSize)).length + (overlap + (prefixSize + inserted + suffixSize))) =
      Bytes.zeros 32 ++ (Bytes.zeros (controlsOf (tupleOf 0 prefixSize prefixSize)).length ++
        (Bytes.zeros (controlsOf (tupleOf overlap inserted (oldMiddle - overlap))).length ++
          (Bytes.zeros (controlsOf (tupleOf 0 suffixSize 0)).length ++ (Bytes.zeros overlap ++
            (Bytes.zeros prefixSize ++ (Bytes.zeros inserted ++ Bytes.zeros suffixSize)))))) := by
    simp only [← zeros_add]
    congr 1
    omega
  have controls : controlsOf (spliceTuples prefixSize overlap inserted (oldMiddle - overlap) suffixSize) =
      controlsOf (tupleOf 0 prefixSize prefixSize) ++ (controlsOf (tupleOf overlap inserted (oldMiddle - overlap)) ++
        controlsOf (tupleOf 0 suffixSize 0)) := by
    rw [spliceTuples, controlsOf_append, controlsOf_append]
  rw [cut, bind_of_ok (putHeader_of _ _ _ _ plan), controls]
  rw [controls] at split
  have header := headerOf_length (controlsOf (tupleOf 0 prefixSize prefixSize) ++
    (controlsOf (tupleOf overlap inserted (oldMiddle - overlap)) ++ controlsOf (tupleOf 0 suffixSize 0))).length
    overlap (overlap + (prefixSize + inserted + suffixSize))
  rw [split] at header ⊢
  generalize headerOf _ overlap (overlap + (prefixSize + inserted + suffixSize)) = front at header ⊢
  have room : (after.take prefixSize).length = prefixSize := by
    rw [List.length_take]
    omega
  have grown : ((after.drop (prefixSize + overlap)).take inserted).length = inserted := by
    rw [List.length_take, List.length_drop]
    omega
  -- One stage after the other fills the part of the buffer it is about.
  have first := @putPrefix_of front
    (Bytes.zeros (controlsOf (tupleOf overlap inserted (oldMiddle - overlap))).length ++
      (Bytes.zeros (controlsOf (tupleOf 0 suffixSize 0)).length ++ Bytes.zeros overlap))
    (Bytes.zeros inserted ++ Bytes.zeros suffixSize) after 32
    (32 + ((controlsOf (tupleOf 0 prefixSize prefixSize)).length +
      ((controlsOf (tupleOf overlap inserted (oldMiddle - overlap))).length +
        (controlsOf (tupleOf 0 suffixSize 0)).length)) + overlap) prefixSize header.symm
    (by simp only [List.length_append, Bytes.zeros_length]; omega) (by omega) plan
  have second := @putMiddle_of (front ++ controlsOf (tupleOf 0 prefixSize prefixSize))
    (Bytes.zeros (controlsOf (tupleOf 0 suffixSize 0)).length ++ (Bytes.zeros overlap ++
      (after.take prefixSize ++ (Bytes.zeros inserted ++ Bytes.zeros suffixSize))))
    (32 + (controlsOf (tupleOf 0 prefixSize prefixSize)).length) overlap inserted oldMiddle
    (by rw [List.length_append, header]) within' plan
  generalize controlsOf (tupleOf 0 prefixSize prefixSize) = one at *
  generalize controlsOf (tupleOf overlap inserted (oldMiddle - overlap)) = two at *
  have third := @putDifferences_of before after
    (front ++ one ++ two ++ Bytes.zeros (controlsOf (tupleOf 0 suffixSize 0)).length) (Bytes.zeros overlap)
    (after.take prefixSize ++ (Bytes.zeros inserted ++ Bytes.zeros suffixSize)) prefixSize
    (32 + (one.length + (two.length + (controlsOf (tupleOf 0 suffixSize 0)).length))) overlap
    (by omega) (by omega) (by simp only [List.length_append, Bytes.zeros_length]; omega) (Bytes.zeros_length _) plan
  have fourth := @putInserted_of
    (front ++ one ++ two ++ Bytes.zeros (controlsOf (tupleOf 0 suffixSize 0)).length ++
      differences before after prefixSize overlap ++ after.take prefixSize)
    (Bytes.zeros suffixSize) after
    (32 + (one.length + (two.length + (controlsOf (tupleOf 0 suffixSize 0)).length)) + overlap + prefixSize)
    (prefixSize + overlap) inserted
    (by simp only [List.length_append, Bytes.zeros_length, differ, room]; omega) (by omega) plan
  have last := @putSuffix_of (front ++ one ++ two)
    (differences before after prefixSize overlap ++ (after.take prefixSize ++
      (after.drop (prefixSize + overlap)).take inserted)) after
    (32 + one.length + two.length)
    (32 + (one.length + (two.length + (controlsOf (tupleOf 0 suffixSize 0)).length)) + overlap + prefixSize + inserted)
    (prefixSize + (overlap + inserted)) suffixSize
    (by simp only [List.length_append]; omega)
    (by simp only [List.length_append, differ, room, grown]; omega) (by omega) plan
  simp only [List.append_assoc] at first second third fourth last ⊢
  rw [bind_of_ok first]
  simp only
  rw [bind_of_ok second]
  simp only
  rw [bind_of_ok third, bind_of_ok fourth, last]
  have rest : after.drop (prefixSize + overlap) = (after.drop (prefixSize + overlap)).take inserted ++
      (after.drop (prefixSize + (overlap + inserted))).take suffixSize := by
    have joined := List.take_append_drop inserted (after.drop (prefixSize + overlap))
    rw [List.drop_drop, Nat.add_assoc] at joined
    have all : (after.drop (prefixSize + (overlap + inserted))).take suffixSize =
        after.drop (prefixSize + (overlap + inserted)) :=
      List.take_of_length_le (by rw [List.length_drop]; omega)
    rw [all, joined]
  rw [← rest]

theorem streamOf_streams {tuples : List Tuple} {deltas extras : Bytes}
    (controls : (controlsOf tuples).length < 2 ^ 64) (total : deltas.length + extras.length < 2 ^ 64) :
    Streams (streamOf tuples deltas extras) (deltas.length + extras.length) (controlsOf tuples) deltas extras := by
  have tag : bsdiffTag.length = 8 := rfl
  have long : ∀ (value : Nat) (rest : Bytes), value < 2 ^ 64 →
      (le64.decode (le64.encode (UInt64.ofNat value) ++ rest)).toNat = value := by
    intro value rest small
    rw [decode_encode, UInt64.toNat_ofNat_of_lt' small]
  have header := headerOf_length (controlsOf tuples).length deltas.length (deltas.length + extras.length)
  have cut : streamOf tuples deltas extras = bsdiffTag ++ (le64.encode (UInt64.ofNat (controlsOf tuples).length) ++
      (le64.encode (UInt64.ofNat deltas.length) ++ (le64.encode (UInt64.ofNat (deltas.length + extras.length)) ++
        (controlsOf tuples ++ (deltas ++ extras))))) := by
    simp only [streamOf, headerOf, List.append_assoc]
  constructor
  case tag => rw [cut, List.take_left' tag]
  case controlSize => rw [cut, List.drop_left' tag, long _ _ controls]
  case deltaSize =>
    rw [cut, show (16 : Nat) = 8 + 8 from rfl, ← List.drop_drop, List.drop_left' tag,
      List.drop_left' (long_length _), long _ _ (by omega)]
  case size =>
    rw [cut, show (24 : Nat) = 8 + 8 + 8 from rfl, ← List.drop_drop, ← List.drop_drop, List.drop_left' tag,
      List.drop_left' (long_length _), List.drop_left' (long_length _), long _ _ total]
  case header =>
    rw [streamOf, List.length_append, header]
    omega
  case body => rw [streamOf, List.drop_left' header, List.append_assoc]

theorem oldByte_of {base : Bytes} {position : Nat} (inside : position < base.length) :
    oldByte base position = base[position] := by
  rw [oldByte, if_pos (Int.natCast_nonneg _), Int.toNat_natCast, List.getD_eq_getElem?_getD,
    List.getElem?_eq_getElem inside]
  rfl

theorem mix_oldByte {before after : Bytes} {start count : Nat} (held : start + count ≤ before.length)
    (held' : start + count ≤ after.length) :
    Delta.mix (oldByte before) start (differences before after start count) =
      (after.drop start).take count := by
  refine Delta.mix_differences ?_ fun i inside => ?_
  · simp only [List.length_take, List.length_drop]
    omega
  · rw [List.length_take, List.length_drop] at inside
    rw [← Int.natCast_add, oldByte_of (by omega), List.getElem_take, List.getElem_drop]

theorem toNat_word {value : Nat} (small : value ≤ wordMax) : (UInt32.ofNat value).toNat = value :=
  UInt32.toNat_ofNat_of_lt' (Nat.lt_succ_of_le small)

theorem signedMove_of {distance : Nat} (small : distance ≤ int32Max) :
    signedMove (UInt32.ofNat distance) = distance := by
  have below : distance < 2 ^ 31 := Nat.lt_succ_of_le small
  have word : (UInt32.ofNat distance).toNat = distance := toNat_word (by unfold wordMax; omega)
  have bit : UInt32.ofNat distance &&& 0x80000000 = 0 := by
    rw [← UInt32.toNat_inj, UInt32.toNat_and, word]
    show distance &&& 2 ^ 31 = 0
    refine Nat.eq_of_testBit_eq fun i => ?_
    rw [Nat.testBit_and, Nat.testBit_two_pow, Nat.zero_testBit]
    by_cases top : 31 = i
    · rw [← top, Nat.testBit_lt_two_pow below, Bool.false_and]
    · rw [decide_eq_false top, Bool.and_false]
  rw [signedMove, if_neg (not_not.mpr bit), word]

theorem playable_append (first second : List Tuple) (source : Int) :
    Playable (first ++ second) source ↔
      Playable first source ∧ Playable second (Delta.position (stepsOf first) source) := by
  induction first generalizing source with
  | nil => simp [Playable, stepsOf, Delta.position]
  | cons tuple rest ih =>
    rw [List.cons_append, Playable, Playable, ih]
    simp only [and_assoc]
    rfl

theorem aligned_decoded {before after : Bytes} (content : after.length ≠ 0) (small : after.length ≤ wordMax)
    (plan : Faults) :
    applyBsd0 before (streamOf [alignedTuple (min before.length after.length) after.length]
      (differences before after 0 (min before.length after.length))
      (after.drop (min before.length after.length))) after.length plan = .ok after plan := by
  have within : min before.length after.length ≤ after.length := Nat.min_le_right _ _
  have within' : min before.length after.length ≤ before.length := Nat.min_le_left _ _
  generalize min before.length after.length = overlap at within within'
  have differ := @differences_length before after 0 overlap (by omega) (by omega)
  have rest : (after.drop overlap).length = after.length - overlap := List.length_drop
  have add : (alignedTuple overlap after.length).add.toNat = overlap := toNat_word (by omega)
  have copy : (alignedTuple overlap after.length).copy.toNat = after.length - overlap := toNat_word (by omega)
  have move : signedMove (alignedTuple overlap after.length).rawMove = 0 := by
    show signedMove 0 = 0
    decide
  have total : (differences before after 0 overlap).length + (after.drop overlap).length = after.length := by
    omega
  have long : after.length < 2 ^ 32 := by
    unfold wordMax at small
    omega
  have streams := @streamOf_streams [alignedTuple overlap after.length] (differences before after 0 overlap)
    (after.drop overlap) (by rw [controlsOf_length]; simp) (by omega)
  rw [total] at streams
  have playable : Playable [alignedTuple overlap after.length] 0 := by
    refine ⟨fun zero => ?_, by omega, ?_, ?_, ?_, trivial⟩
    · rw [zero.1] at add
      rw [zero.2] at copy
      have none : (0 : UInt32).toNat = 0 := rfl
      omega
    all_goals
      simp only [add, move, int64Max, int64Min]
      omega
  have run := @applyBsd0_run before _ _ _ _ _ streams
    (by simp only [stepsOf, List.map_cons, List.map_nil, Delta.adds_cons, Delta.adds_nil, Tuple.step]; omega)
    (by simp only [stepsOf, List.map_cons, List.map_nil, Delta.copies_cons, Delta.copies_nil, Tuple.step]; omega)
    total playable plan
  have mixed := @mix_oldByte before after 0 overlap (by omega) (by omega)
  rw [run]
  refine congrArg (fun output => EStateM.Result.ok output plan) ?_
  simp only [stepsOf, List.map_cons, List.map_nil, Delta.replay, Tuple.step, add, copy]
  rw [List.take_of_length_le (Nat.le_of_eq differ), List.take_of_length_le (Nat.le_of_eq rest), List.append_nil]
  have start : ((0 : Nat) : Int) = 0 := rfl
  rw [start] at mixed
  rw [mixed, List.drop_zero, List.take_append_drop]

section tuple

variable {add copy move : Nat}

theorem tupleOf_adds (small : add ≤ wordMax) : Delta.adds (stepsOf (tupleOf add copy move)) = add := by
  by_cases some : add + copy ≠ 0
  · rw [tupleOf, if_pos some]
    exact toNat_word small
  · rw [tupleOf_none (not_not.mp some)]
    show 0 = add
    omega

theorem tupleOf_copies (small : copy ≤ wordMax) : Delta.copies (stepsOf (tupleOf add copy move)) = copy := by
  by_cases some : add + copy ≠ 0
  · rw [tupleOf, if_pos some]
    exact toNat_word small
  · rw [tupleOf_none (not_not.mp some)]
    show 0 = copy
    omega

theorem tupleOf_position (addSmall : add ≤ wordMax) (moveSmall : move ≤ int32Max)
    (still : add + copy = 0 → move = 0) (source : Int) :
    Delta.position (stepsOf (tupleOf add copy move)) source = source + add + move := by
  by_cases some : add + copy ≠ 0
  · rw [tupleOf, if_pos some]
    show source + ((UInt32.ofNat add).toNat : Int) + signedMove (UInt32.ofNat move) = _
    rw [toNat_word addSmall, signedMove_of moveSmall]
  · rw [not_not] at some
    rw [tupleOf_none some, still some]
    show source = _
    omega

-- The tuple of an empty range is left out, and its seek with it.
theorem tupleOf_onward (addSmall : add ≤ wordMax) (moveSmall : move ≤ int32Max) (source : Int) :
    source ≤ Delta.position (stepsOf (tupleOf add copy move)) source ∧
      Delta.position (stepsOf (tupleOf add copy move)) source ≤ source + add + move := by
  by_cases some : add + copy ≠ 0
  · rw [tupleOf_position addSmall moveSmall fun none => (some none).elim]
    omega
  · rw [tupleOf_none (not_not.mp some)]
    show source ≤ source ∧ source ≤ _
    omega

theorem tupleOf_playable (addSmall : add ≤ wordMax) (copySmall : copy ≤ wordMax) (moveSmall : move ≤ int32Max)
    {source : Int} (positive : 0 ≤ source) (near : source ≤ 2 ^ 40) :
    Playable (tupleOf add copy move) source := by
  by_cases some : add + copy ≠ 0
  · rw [tupleOf, if_pos some]
    refine ⟨fun zero => some ?_, positive, ?_, ?_, ?_, trivial⟩
    · have first : UInt32.ofNat add = 0 := zero.1
      have second : UInt32.ofNat copy = 0 := zero.2
      rw [← toNat_word addSmall, ← toNat_word copySmall, first, second]
      rfl
    all_goals
      simp only [toNat_word addSmall, signedMove_of moveSmall, int64Max, int64Min]
      simp only [wordMax, int32Max] at addSmall moveSmall
      omega
  · rw [tupleOf_none (not_not.mp some)]
    trivial

theorem tupleOf_replay {base : Int → UInt8} (addSmall : add ≤ wordMax) (copySmall : copy ≤ wordMax)
    (source : Int) (deltas extras : Bytes) :
    Delta.replay base (stepsOf (tupleOf add copy move)) source deltas extras =
      Delta.mix base source (deltas.take add) ++ extras.take copy := by
  by_cases some : add + copy ≠ 0
  · rw [tupleOf, if_pos some]
    show Delta.mix base source (deltas.take (UInt32.ofNat add).toNat) ++
      extras.take (UInt32.ofNat copy).toNat ++ [] = _
    rw [toNat_word addSmall, toNat_word copySmall, List.append_nil]
  · have none : add = 0 ∧ copy = 0 := by omega
    rw [none.1, none.2]
    rfl

end tuple

theorem splice_decoded {before after : Bytes} {prefixSize suffixSize oldMiddle newMiddle overlap : Nat}
    (old : prefixSize + oldMiddle + suffixSize = before.length)
    (new : prefixSize + newMiddle + suffixSize = after.length) (shared : overlap = min oldMiddle newMiddle)
    (small : after.length ≤ wordMax) (seek : prefixSize ≤ int32Max) (skip : oldMiddle - overlap ≤ int32Max) (plan : Faults) :
    applyBsd0 before (streamOf
        (spliceTuples prefixSize overlap (newMiddle - overlap) (oldMiddle - overlap) suffixSize)
        (differences before after prefixSize overlap)
        (after.take prefixSize ++ after.drop (prefixSize + overlap))) after.length plan = .ok after plan := by
  have within : overlap ≤ newMiddle := shared ▸ Nat.min_le_right _ _
  have within' : overlap ≤ oldMiddle := shared ▸ Nat.min_le_left _ _
  have prefixWord : prefixSize ≤ wordMax := by omega
  have overlapWord : overlap ≤ wordMax := by omega
  have insertedWord : newMiddle - overlap ≤ wordMax := by omega
  have suffixWord : suffixSize ≤ wordMax := by omega
  have zeroWord : 0 ≤ wordMax := Nat.zero_le _
  have zeroSeek : 0 ≤ int32Max := Nat.zero_le _
  have differ := @differences_length before after prefixSize overlap (by omega) (by omega)
  have front : (after.take prefixSize).length = prefixSize := by
    rw [List.length_take]
    omega
  have back : (after.drop (prefixSize + overlap)).length = newMiddle - overlap + suffixSize := by
    rw [List.length_drop]
    omega
  have literals : (after.take prefixSize ++ after.drop (prefixSize + overlap)).length =
      prefixSize + (newMiddle - overlap + suffixSize) := by
    rw [List.length_append, front, back]
  have total : (differences before after prefixSize overlap).length +
      (after.take prefixSize ++ after.drop (prefixSize + overlap)).length = after.length := by
    omega
  have first := @tupleOf_position 0 prefixSize prefixSize zeroWord seek (by omega) 0
  have second := @tupleOf_onward overlap (newMiddle - overlap) (oldMiddle - overlap) overlapWord skip
    (0 + ((0 : Nat) : Int) + prefixSize)
  have playable : Playable (spliceTuples prefixSize overlap (newMiddle - overlap) (oldMiddle - overlap)
      suffixSize) 0 := by
    simp only [wordMax, int32Max] at prefixWord overlapWord skip
    rw [spliceTuples, playable_append, playable_append, first]
    refine ⟨tupleOf_playable zeroWord (by unfold wordMax; omega) seek (by omega) (by omega),
      tupleOf_playable overlapWord insertedWord skip (by omega) (by omega),
      tupleOf_playable zeroWord suffixWord zeroSeek (by omega) (by omega)⟩
  have streams := @streamOf_streams
    (spliceTuples prefixSize overlap (newMiddle - overlap) (oldMiddle - overlap) suffixSize)
    (differences before after prefixSize overlap) (after.take prefixSize ++ after.drop (prefixSize + overlap))
    (by
      have few := spliceTuples_length prefixSize overlap (newMiddle - overlap) (oldMiddle - overlap) suffixSize
      rw [controlsOf_length]
      omega)
    (by rw [total]; unfold wordMax at small; omega)
  rw [total] at streams
  have adds : Delta.adds (stepsOf (spliceTuples prefixSize overlap (newMiddle - overlap) (oldMiddle - overlap)
      suffixSize)) = overlap := by
    rw [spliceTuples, stepsOf_append, stepsOf_append, Delta.adds_append, Delta.adds_append,
      tupleOf_adds zeroWord, tupleOf_adds overlapWord, tupleOf_adds zeroWord]
    omega
  have copies : Delta.copies (stepsOf (spliceTuples prefixSize overlap (newMiddle - overlap) (oldMiddle - overlap)
      suffixSize)) = prefixSize + (newMiddle - overlap + suffixSize) := by
    rw [spliceTuples, stepsOf_append, stepsOf_append, Delta.copies_append, Delta.copies_append,
      tupleOf_copies prefixWord, tupleOf_copies insertedWord, tupleOf_copies suffixWord]
  have run := @applyBsd0_run before _ _ _ _ _ streams (adds.trans differ.symm) (copies.trans literals.symm)
    total playable plan
  rw [run]
  refine congrArg (fun output => EStateM.Result.ok output plan) ?_
  have mixed := @mix_oldByte before after prefixSize overlap (by omega) (by omega)
  rw [spliceTuples, stepsOf_append, stepsOf_append, Delta.replay_append, Delta.replay_append, first,
    tupleOf_adds zeroWord, tupleOf_copies prefixWord, tupleOf_adds overlapWord, tupleOf_copies insertedWord,
    tupleOf_replay zeroWord prefixWord, tupleOf_replay overlapWord insertedWord,
    tupleOf_replay zeroWord suffixWord]
  have none : ∀ source, Delta.mix (oldByte before) source ([] : Bytes) = [] := fun _ => rfl
  have place : (0 : Int) + ((0 : Nat) : Int) + prefixSize = prefixSize := by omega
  have copied : (after.take prefixSize ++ after.drop (prefixSize + overlap)).take prefixSize =
      after.take prefixSize := List.take_left' front
  have inserted : (after.take prefixSize ++ after.drop (prefixSize + overlap)).drop prefixSize =
      after.drop (prefixSize + overlap) := List.drop_left' front
  have ended : (((after.drop (prefixSize + overlap)).drop (newMiddle - overlap)).take suffixSize) =
      (after.drop (prefixSize + overlap)).drop (newMiddle - overlap) :=
    List.take_of_length_le (by rw [List.length_drop, back]; omega)
  rw [List.take_zero, List.take_zero, List.drop_zero, none, none, place, copied, inserted,
    List.take_of_length_le (Nat.le_of_eq differ), mixed, List.nil_append, List.nil_append, ended,
    List.append_assoc ((after.drop prefixSize).take overlap), List.take_append_drop, ← List.drop_drop,
    List.take_append_drop, List.take_append_drop]

theorem countCommon_le (as bs : Bytes) :
    countCommon as bs ≤ as.length ∧ countCommon as bs ≤ bs.length := by
  fun_induction countCommon as bs with
  | case1 as b bs ih =>
    rw [List.length_cons, List.length_cons]
    omega
  | case2 => exact ⟨Nat.zero_le _, Nat.zero_le _⟩
  | case3 => exact ⟨Nat.zero_le _, Nat.zero_le _⟩

theorem common_fits (before after : Bytes) :
    prefixOf before after + suffixOf before after ≤ before.length ∧
      prefixOf before after + suffixOf before after ≤ after.length := by
  obtain ⟨old, new⟩ := countCommon_le before after
  obtain ⟨old', new'⟩ := countCommon_le (before.drop (prefixOf before after)).reverse
    (after.drop (prefixOf before after)).reverse
  rw [List.length_reverse, List.length_drop] at old' new'
  rw [← prefixOf] at old new
  rw [← suffixOf] at old' new'
  omega

def seeks (before after : Bytes) : List Nat :=
  let oldMiddle := before.length - prefixOf before after - suffixOf before after
  let newMiddle := after.length - prefixOf before after - suffixOf before after
  [prefixOf before after, oldMiddle - min oldMiddle newMiddle]

/-- A raw stream from which the decoder gets the new content back. -/
def Decodes (before after raw : Bytes) : Prop :=
  ∀ plan, applyBsd0 before raw after.length plan = .ok after plan

theorem bsd0Raw_serves {before after : Bytes} (old : before.length ≤ wordMax) (new : after.length ≤ wordMax)
    (content : after.length ≠ 0) (splice : Bool) :
    Serves (bsd0Raw before after splice) fun built => (splice = false → built ≠ none) ∧
      ∀ raw ∈ built, raw.length ≤ 32 + 3 * 12 + after.length ∧
        ((splice = true → ∀ distance ∈ seeks before after, distance ≤ int32Max) →
          Decodes before after raw) := by
  unfold bsd0Raw
  have large : ¬ after.length > addressMax - 32 - 3 * 12 := by
    unfold addressMax
    unfold wordMax at new
    omega
  refine (Serves.stopIf (by omega) _).bind fun _ _ => ?_
  by_cases aligned : splice = false
  · rw [if_pos aligned]
    refine (bsd0Aligned_serves before after).bind ?_
    rintro raw rfl
    refine Serves.pure ⟨fun _ => Option.some_ne_none _, ?_⟩
    rintro raw ⟨⟩
    refine ⟨?_, fun _ plan => aligned_decoded content new plan⟩
    rw [streamOf_length, differences_length (by omega) (by omega), List.length_drop, controlsOf_length,
      List.length_singleton]
    omega
  · rw [if_neg aligned]
    simp only
    obtain ⟨held, held'⟩ := common_fits before after
    split
    next => exact Serves.pure ⟨fun named => (aligned named).elim, nofun⟩
    next worth =>
      have oldSplit : prefixOf before after + (before.length - prefixOf before after - suffixOf before after) +
          suffixOf before after = before.length := by omega
      have newSplit : prefixOf before after + (after.length - prefixOf before after - suffixOf before after) +
          suffixOf before after = after.length := by omega
      refine (bsd0Splice_serves oldSplit newSplit rfl).bind ?_
      rintro raw rfl
      refine Serves.pure ⟨fun named => (aligned named).elim, ?_⟩
      rintro raw ⟨⟩
      refine ⟨?_, fun near plan => ?_⟩
      · rw [streamOf_length, differences_length (by omega) (by omega), List.length_append, List.length_take,
          List.length_drop, controlsOf_length]
        have few := spliceTuples_length (prefixOf before after)
          (min (before.length - prefixOf before after - suffixOf before after)
            (after.length - prefixOf before after - suffixOf before after))
          (after.length - prefixOf before after - suffixOf before after -
            min (before.length - prefixOf before after - suffixOf before after)
              (after.length - prefixOf before after - suffixOf before after))
          (before.length - prefixOf before after - suffixOf before after -
            min (before.length - prefixOf before after - suffixOf before after)
              (after.length - prefixOf before after - suffixOf before after)) (suffixOf before after)
        omega
      · have distances := near (by simpa using aligned)
        exact splice_decoded oldSplit newSplit rfl new (distances _ List.mem_cons_self)
          (distances _ (List.mem_cons_of_mem _ List.mem_cons_self)) plan

theorem bsd0Raw_ensures (before after : Bytes) (splice : Bool) :
    Ensures (bsd0Raw before after splice) fun built => (splice = false → built ≠ none) ∧
      ∀ raw ∈ built, raw.length ≤ 32 + 3 * 12 + after.length ∧
        ((splice = true → ∀ distance ∈ seeks before after, distance ≤ int32Max) →
          Decodes before after raw) := by
  by_cases limits : before.length ≤ wordMax ∧ after.length ≤ wordMax ∧ after.length ≠ 0
  · exact (bsd0Raw_serves limits.1 limits.2.1 limits.2.2 splice).ensures
  · unfold bsd0Raw
    refine (Ensures.stopIf _ Error.size).bind fun _ inside => (limits ?_).elim
    omega

theorem bsd0Pack_ensures (raw : Bytes) :
    Ensures (bsd0Pack raw) fun encoded => encoded.length ≤ raw.length * 2 + 4 ∧ Unwraps encoded raw :=
  (Ensures.stopIf _ _).bind fun _ _ => (Ensures.request _).bind fun _ _ => (bsd0Rle_serves raw).ensures

theorem bsd0_agrees (raw before after : Bytes) (splice : Bool) :
    (Serves (bsd0Rle raw) fun encoded => encoded.length ≤ raw.length * 2 + 4 ∧
      ∀ plan, expandRle encoded raw.length plan = .ok raw plan) ∧
    (Ensures (bsd0Raw before after splice) fun built => ∀ stream ∈ built,
      (splice = true → ∀ distance ∈ seeks before after, distance ≤ int32Max) →
        Decodes before after stream) ∧
    (Ensures (bsd0Encode before after splice) fun built => ∀ transform ∈ built,
      ∃ stream, stream.length = transform.streamSize ∧
        (∀ plan, expandRle transform.encoded transform.streamSize plan = .ok stream plan) ∧
        ((splice = true → ∀ distance ∈ seeks before after, distance ≤ int32Max) →
          Decodes before after stream)) ∧
    (before.length ≤ wordMax → after.length ≤ wordMax → after ≠ [] →
      ∃ built, bsd0Raw before after splice Faults.healthy = .ok built Faults.healthy ∧
        (splice = false → built ≠ none)) := by
  refine ⟨?_, ?_, ?_, fun old new content => ?_⟩
  · exact (bsd0Rle_serves raw).mono fun encoded meets => ⟨meets.1, expandRle_unwraps meets.2⟩
  · exact (bsd0Raw_ensures before after splice).mono fun built meets stream found =>
      (meets.2 stream found).2
  · refine (bsd0Raw_ensures before after splice).bind fun built meets => ?_
    cases built with
    | none => exact Ensures.pure nofun
    | some stream =>
      refine (bsd0Pack_ensures stream).bind fun encoded wrapped => Ensures.pure ?_
      rintro transform ⟨⟩
      exact ⟨stream, rfl, expandRle_unwraps wrapped.2, (meets.2 stream rfl).2⟩
  · have serves := bsd0Raw_serves old new (List.length_eq_zero_iff.not.mpr content) splice
    obtain ⟨built, run⟩ := serves.healthy
    exact ⟨built, run, (serves.ensures.ok run).1⟩

-- A byte put in before an unchanged end: the ends are copied, and the splice is wrapped and expanded.
def shorter : Bytes := [1, 2] ++ List.replicate 16 9

def spliced : Bytes := [1, 2, 5] ++ List.replicate 16 9

set_option maxRecDepth 4000 in
theorem bsd0_agrees_splice :
    ∃ transform stream, bsd0Encode shorter spliced true Faults.healthy = .ok (some transform) Faults.healthy ∧
      expandRle transform.encoded transform.streamSize Faults.healthy = .ok stream Faults.healthy ∧
      applyBsd0 shorter stream spliced.length Faults.healthy = .ok spliced Faults.healthy := by
  obtain ⟨transform, run⟩ : ∃ transform, bsd0Encode shorter spliced true Faults.healthy =
      .ok (some transform) Faults.healthy := ⟨_, rfl⟩
  obtain ⟨stream, -, expands, decodes⟩ := (bsd0_agrees [] shorter spliced true).2.2.1.ok run transform rfl
  exact ⟨transform, stream, run, expands _, decodes (fun _ => by decide) _⟩

end Patch

end LibMpq
